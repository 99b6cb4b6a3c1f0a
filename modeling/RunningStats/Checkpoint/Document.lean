/-!
# Documents

The values that checkpoints are written as: null, truth values, numbers, texts, lists and objects.
A number is an integer or carries decimal places; the two are told apart as written.
-/

namespace RunningStats

/-- A value of a checkpoint. -/
inductive Document where
  | null
  | boolean (value : Bool)
  | integer (value : Int)
  | decimal (digits : Int) (places : Nat)
  | text (value : String)
  | list (items : List Document)
  | object (fields : List (String × Document))
  deriving Inhabited

namespace Document

/-- The text of a document that is one. -/
def text? : Document → Option String
  | text s => some s
  | _ => none

/-- A count: an integer from zero to the largest of 64 bits. -/
def count? : Document → Option UInt64
  | integer n => if 0 ≤ n ∧ n < UInt64.size then some (UInt64.ofNat n.toNat) else none
  | _ => none

/-- The document of a count. -/
def ofCount (n : UInt64) : Document := integer n.toNat

end Document

end RunningStats
