/-!
# Reading UTF-8

Bytes are decoded one character at a time. A byte that cannot go on the character it stands in, or
begin one, makes the text invalid; the fault is the number of bytes that come before that
character.
-/

namespace RunningStats.Text.Utf8

/-- A character under way: how many bytes it still needs, the range of the next one, and the bits
read so far. -/
structure Pending where
  owed : Nat
  low : UInt8
  high : UInt8
  code : Nat

/-- What a first byte announces. The second byte is bounded so that no character has a longer form
than it needs, none is a surrogate and none lies beyond the last plane. -/
def lead? (b : UInt8) : Option Pending :=
  let n := b.toNat
  if n < 0xC2 then none
  else if n < 0xE0 then some ⟨1, 0x80, 0xBF, n - 0xC0⟩
  else if n < 0xF0 then
    some ⟨2, if n = 0xE0 then 0xA0 else 0x80, if n = 0xED then 0x9F else 0xBF, n - 0xE0⟩
  else if n < 0xF5 then
    some ⟨3, if n = 0xF0 then 0x90 else 0x80, if n = 0xF4 then 0x8F else 0xBF, n - 0xF0⟩
  else none

/-- The characters of some bytes, where `valid` bytes have been decoded before, `read` bytes read,
and a character may be under way. -/
def decodeFrom (valid read : Nat) : Option Pending → List UInt8 → Except Nat (List Char)
  | none, [] => .ok []
  | some _, [] => .error valid
  | none, b :: bs =>
    if b < 0x80 then
      (decodeFrom (read + 1) (read + 1) none bs).map (Char.ofNat b.toNat :: ·)
    else
      match lead? b with
      | none => .error valid
      | some p => decodeFrom valid (read + 1) (some p) bs
  | some p, b :: bs =>
    if p.low ≤ b ∧ b ≤ p.high then
      let code := p.code * 64 + (b.toNat - 0x80)
      if p.owed ≤ 1 then
        (decodeFrom (read + 1) (read + 1) none bs).map (Char.ofNat code :: ·)
      else decodeFrom valid (read + 1) (some ⟨p.owed - 1, 0x80, 0xBF, code⟩) bs
    else .error valid

/-- The characters of a text, or the length of its valid part. -/
def decode (bytes : List UInt8) : Except Nat (List Char) := decodeFrom 0 0 none bytes

end RunningStats.Text.Utf8
