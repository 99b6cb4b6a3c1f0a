import RunningStats.Binary.Native
import RunningStats.Decimal.Digits

/-!
# Reading decimals

How a floating point number is read from its text. `Literal.read` takes the text apart: an optional
sign, then a name (`inf`, `infinity`, `nan` in any case) or decimal digits with an optional point
and an optional exponent. `ofLiteral` rounds the exact value once to the nearest number of a format.
-/

namespace RunningStats.Decimal

/-- A number as written: a name, or `digits * 10 ^ exponent`. -/
inductive Literal where
  | nan
  | infinite (negative : Bool)
  | finite (negative : Bool) (digits : Nat) (exponent : Int)
  deriving DecidableEq, Repr

/-- Why a text is no number. -/
inductive Unreadable where
  | empty
  | invalid
  deriving DecidableEq, Repr

namespace Literal

/-- The value of a run of digits that follows others. -/
def digitsAfter (n : Nat) (ds : List Char) : Nat :=
  ds.foldl (fun n c => 10 * n + (c.toNat - '0'.toNat)) n

/-- A leading sign, if any, and the rest. -/
def splitSign : List Char → Bool × List Char
  | '-' :: rest => (true, rest)
  | '+' :: rest => (false, rest)
  | cs => (false, cs)

/-- The exponent part: nothing, or `e` with an optional sign and at least one digit. -/
def exponent? : List Char → Option Int
  | [] => some 0
  | c :: rest =>
    if c = 'e' ∨ c = 'E' then
      let (negative, ds) := splitSign rest
      if ds ≠ [] ∧ ds.all Char.isDigit then
        let n := digitsAfter 0 ds
        some (if negative then -n else n)
      else none
    else none

/-- Digits with an optional point, at least one digit in all, and an optional exponent. -/
def number? (negative : Bool) (cs : List Char) : Option Literal :=
  let whole := cs.takeWhile Char.isDigit
  let (fraction, tail) := match cs.dropWhile Char.isDigit with
    | '.' :: rest => (rest.takeWhile Char.isDigit, rest.dropWhile Char.isDigit)
    | rest => ([], rest)
  if whole = [] ∧ fraction = [] then none
  else (exponent? tail).map fun e =>
    .finite negative (digitsAfter (digitsAfter 0 whole) fraction) (e - fraction.length)

/-- A name, in any case. -/
def name? (negative : Bool) (cs : List Char) : Option Literal :=
  let lower := cs.map Char.toLower
  if lower = "nan".toList then some .nan
  else if lower = "inf".toList ∨ lower = "infinity".toList then some (.infinite negative)
  else none

/-- The number that a text spells. -/
def read (cs : List Char) : Except Unreadable Literal :=
  if cs = [] then .error .empty
  else
    let (negative, rest) := splitSign cs
    match number? negative rest <|> name? negative rest with
    | some l => .ok l
    | none => .error .invalid

end Literal

/-- Decimal magnitudes beyond this one, to either side, are out of the range of every format. -/
def extreme : Int := 1000

/-- The pattern of the format nearest to a literal. -/
def ofLiteral (f : Binary.Format) : Literal → Nat
  | .nan => f.nan
  | .infinite negative => f.signed negative f.infinity
  | .finite negative digits exponent =>
    let top := exponent + length digits
    if digits = 0 ∨ top < -extreme then f.signed negative 0
    else if extreme < top then f.signed negative f.infinity
    else
      let r := Binary.scale10 digits 1 exponent
      f.nearest negative r.1 r.2

/-- The number that a text spells, rounded once. -/
def readNumber (α : Type) [Patterned α] (cs : List Char) : Except Unreadable α :=
  (Literal.read cs).map fun l => Patterned.ofPattern (ofLiteral (Patterned.format α) l)

end RunningStats.Decimal
