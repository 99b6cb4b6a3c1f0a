/-!
# Blanks

The bytes and the characters that count as blank around a field, and trimming on both sides.
-/

namespace RunningStats.Text

/-- A list without the elements at both ends that satisfy a test. -/
def trim {β : Type} (blank : β → Bool) (xs : List β) : List β :=
  ((xs.dropWhile blank).reverse.dropWhile blank).reverse

/-- The blank bytes: space, tab, line feed, form feed and carriage return. -/
def isBlankByte (b : UInt8) : Bool :=
  b == 0x20 || b == 0x09 || b == 0x0A || b == 0x0C || b == 0x0D

/-- The characters with the property `White_Space`, as ranges of code points. -/
def blankRanges : List (Nat × Nat) :=
  [ (0x0009, 0x000D), (0x0020, 0x0020), (0x0085, 0x0085), (0x00A0, 0x00A0), (0x1680, 0x1680),
    (0x2000, 0x200A), (0x2028, 0x2029), (0x202F, 0x202F), (0x205F, 0x205F), (0x3000, 0x3000) ]

/-- A blank character. -/
def isBlank (c : Char) : Bool :=
  blankRanges.any fun (first, last) => decide (first ≤ c.toNat) && decide (c.toNat ≤ last)

end RunningStats.Text
